import Cutover.Json.Reader
import Cutover.Json.Printer
import Cutover.Decimal.Shortest

/-!
# Cell values and statements

A cell is absent or holds an integer of 64 bits, a float, a text or a truth value. Its written form
does not say which: the kind is read off the form. A statement is an SQL text with cells bound to
it.
-/

namespace Cutover

/-- A cell of a result, or a value bound to a statement. -/
inductive Value where
  | null
  | integer (n : Int)
  | float (f : Float)
  | text (s : String)
  | boolean (b : Bool)
  deriving Repr, Inhabited

namespace Value

/-- A value as it is shown in statements. Texts are put between single quotes as they are. -/
def display : Value → String
  | null => "NULL"
  | integer n => (Bytes.toText? (Json.Printer.int n)).getD ""
  | float f => Decimal.Layout.plain.write f
  | text s => "'" ++ s ++ "'"
  | boolean b => if b then "true" else "false"

def encode : Value → Bytes
  | null => Json.Printer.null
  | integer n => Json.Printer.int n
  | float f => Bytes.ofText (Decimal.Layout.json.write f)
  | text s => Json.Printer.text s
  | boolean b => Json.Printer.bool b

/-- The value that a number stands for: an integer if it fits in 64 bits with sign. -/
def ofNumber : Json.Number → Value
  | .int n =>
    if Int64.minValue.toInt ≤ n ∧ n ≤ Int64.maxValue.toInt then integer n
    else float (UInt64.ofNat n.natAbs).toFloat
  | .float f => float f

/-- Reads a value. Arrays and objects are no values. -/
def read : Json.Reader Value := fun bs =>
  match Json.skipBlank bs with
  | [] => throw .malformed
  | b :: rest =>
    if b = 34 then (Json.Reader.text (b :: rest)).map fun (s, rest) => (text s, rest)
    else if b = 110 then (Json.Reader.null (b :: rest)).map fun (_, rest) => (null, rest)
    else if b = 116 || b = 102 then
      (Json.Reader.bool (b :: rest)).map fun (v, rest) => (boolean v, rest)
    else if Json.startsNumeral (b :: rest) then
      (Json.require (Json.Number.read (b :: rest))).map fun (n, rest) => (ofNumber n, rest)
    else throw (Json.unwanted (b :: rest))

def encodeList (vs : List Value) : Bytes := Json.Printer.array (vs.map encode)

end Value

/-- An SQL text and the values bound to it, in order. -/
structure Statement where
  sql : String
  args : List Value := []
  deriving Repr, Inhabited

namespace Statement

def bind (s : Statement) (v : Value) : Statement := { s with args := s.args ++ [v] }

/-- A statement as it is shown: its values follow in brackets, if there are any. -/
def display (s : Statement) : String :=
  if s.args.isEmpty then s.sql
  else s.sql ++ " [" ++ ", ".intercalate (s.args.map Value.display) ++ "]"

end Statement

end Cutover
