import Cutover.Json.Text
import Cutover.Decimal.Digits
import Cutover.Decimal.Scale

/-!
# Numerals

A numeral is a sign, whole digits without a leading zero, and optionally a fraction and an exponent.
Without fraction and exponent it stands for an integer when it fits in 64 bits, signed or unsigned;
otherwise it stands for a float, and so does the integer zero with a minus sign.
-/

namespace Cutover.Json

/-- The parts of a written number. -/
structure Numeral where
  negative : Bool
  whole : List Nat
  fraction : Option (List Nat)
  exponent : Option Int
  deriving DecidableEq, Repr

/-- What a numeral stands for. -/
inductive Number where
  | int (n : Int)
  | float (f : Float)

namespace Numeral

def isDigit (b : UInt8) : Bool := 48 ≤ b && b ≤ 57

/-- The digits at the front, and the bytes after them. -/
def takeDigits (bs : Bytes) : List Nat × Bytes :=
  ((bs.takeWhile isDigit).map fun b => b.toNat - 48, bs.dropWhile isDigit)

/-- The bytes after a byte, if they start with it. -/
def strip (b : UInt8) : Bytes → Option Bytes
  | [] => none
  | c :: rest => if c = b then some rest else none

/-- The fraction at the front: a point and at least one digit. -/
def takeFraction (bs : Bytes) : Option (Option (List Nat) × Bytes) :=
  match strip 46 bs with
  | none => some (none, bs)
  | some rest =>
    match takeDigits rest with
    | ([], _) => none
    | (ds, rest) => some (some ds, rest)

/-- The exponent at the front: a letter, perhaps a sign, and at least one digit. -/
def takeExponent (bs : Bytes) : Option (Option Int × Bytes) :=
  match strip 101 bs <|> strip 69 bs with
  | none => some (none, bs)
  | some rest =>
    let (negative, rest) :=
      match strip 45 rest with
      | some rest => (true, rest)
      | none => (false, (strip 43 rest).getD rest)
    match takeDigits rest with
    | ([], _) => none
    | (ds, rest) =>
      let e : Int := Decimal.ofDigits ds
      some (some (if negative then -e else e), rest)

/-- Whether digits are the whole part of a numeral: a single zero, or no zero in front. -/
def isWhole : List Nat → Bool
  | [] => false
  | [_] => true
  | d :: _ => d != 0

/-- The numeral at the front, and the bytes after it. -/
def read (bs : Bytes) : Option (Numeral × Bytes) := do
  let (negative, bs) :=
    match strip 45 bs with
    | some rest => (true, rest)
    | none => (false, bs)
  let (whole, bs) := takeDigits bs
  if isWhole whole then
    let (fraction, bs) ← takeFraction bs
    let (exponent, bs) ← takeExponent bs
    pure (⟨negative, whole, fraction, exponent⟩, bs)
  else none

/-- The float that a numeral stands for, if it is not beyond the largest. -/
def toFloat? (x : Numeral) : Option Float := do
  let (n, left) := Decimal.leading 0 x.whole
  let (n, taken) := Decimal.following n (x.fraction.getD [])
  let f ← Decimal.scale n ((left : Int) - taken + x.exponent.getD 0)
  pure (if x.negative then -f else f)

/-- What a numeral stands for, if it is not beyond the largest float. -/
def value? (x : Numeral) : Option Number :=
  let n := Decimal.ofDigits x.whole
  if x.fraction.isNone && x.exponent.isNone then
    if x.negative then
      if 0 < n && n ≤ UInt64.size / 2 then some (.int (-n)) else x.toFloat?.map .float
    else if n < UInt64.size then some (.int n) else x.toFloat?.map .float
  else x.toFloat?.map .float

end Numeral

def Number.read (bs : Bytes) : Option (Number × Bytes) := do
  let (x, rest) ← Numeral.read bs
  let n ← x.value?
  pure (n, rest)

end Cutover.Json
