import Cutover.Json.Text
import Cutover.Decimal.Digits

/-!
# Written forms

Values are written without blanks, with members in the order given. A flat object can also be
written one member a line.
-/

namespace Cutover.Json.Printer

def nat (n : Nat) : Bytes := (Decimal.digits n).map fun d => UInt8.ofNat (48 + d)

def int (n : Int) : Bytes := if n < 0 then 45 :: nat n.natAbs else nat n.natAbs

def text (s : String) : Bytes := Text.write s

def bool (b : Bool) : Bytes := Bytes.ofText (if b then "true" else "false")

def null : Bytes := Bytes.ofText "null"

/-- Written values with a separator between them. -/
def separated (sep : Bytes) : List Bytes → Bytes
  | [] => []
  | [v] => v
  | v :: w :: rest => v ++ sep ++ separated sep (w :: rest)

def array (values : List Bytes) : Bytes := 91 :: (separated [44] values ++ [93])

/-- An object of names and written values. -/
def object (members : List (String × Bytes)) : Bytes :=
  123 :: (separated [44] (members.map fun (k, v) => text k ++ 58 :: v) ++ [125])

/-- An object of names and written values, one member a line, indented by two blanks. -/
def lines (members : List (String × Bytes)) : Bytes :=
  [123, 10] ++
    separated [44, 10] (members.map fun (k, v) => [32, 32] ++ text k ++ [58, 32] ++ v) ++ [10, 125]

end Cutover.Json.Printer
