import Cutover.Decimal.Digits

/-!
# The shortest decimal form of a float

Of the decimal numbers that are nearer to a float than to any other float, the ones with the fewest
digits are candidates, and the one nearest to the float is chosen. All comparisons are made on exact
fractions. `Layout` says how digits and exponent are then written down.
-/

namespace Cutover.Decimal

structure Ratio where
  num : Nat
  den : Nat

namespace Ratio

/-- `n * 2 ^ e` -/
def binary (n : Nat) (e : Int) : Ratio :=
  if 0 ≤ e then ⟨n * Nat.pow 2 e.toNat, 1⟩ else ⟨n, Nat.pow 2 (-e).toNat⟩

/-- `n * 10 ^ e` -/
def decimal (n : Nat) (e : Int) : Ratio :=
  if 0 ≤ e then ⟨n * Nat.pow 10 e.toNat, 1⟩ else ⟨n, Nat.pow 10 (-e).toNat⟩

def lt (a b : Ratio) : Bool := a.num * b.den < b.num * a.den

def le (a b : Ratio) : Bool := a.num * b.den ≤ b.num * a.den

/-- The largest whole number that is not above `a * 10 ^ e`. -/
def floorScaled (a : Ratio) (e : Int) : Nat :=
  if 0 ≤ e then a.num * Nat.pow 10 e.toNat / a.den else a.num / (a.den * Nat.pow 10 (-e).toNat)

/-- The exponent of the first digit of a positive fraction. -/
def leadExponent (a : Ratio) : Int :=
  let whole : Nat := a.num / a.den
  if 0 < whole then (digits whole).length - 1
  else
    match (List.range 400).find? fun k => a.den ≤ a.num * Nat.pow 10 (k + 1) with
    | some k => -(k + 1 : Int)
    | none => -400

end Ratio

/-- A positive float as a fraction, with the numbers that round to it: those between the two
bounds, which belong to it themselves if `closed`. -/
structure Interval where
  value : Ratio
  lower : Ratio
  upper : Ratio
  closed : Bool

namespace Interval

/-- The interval of a positive finite float, from its bits without the sign. The gap below a power
of two is half the gap above it. -/
def ofBits (bits : Nat) : Interval :=
  let biased : Nat := bits >>> 52
  let low : Nat := bits % (1 <<< 52)
  let m : Nat := if biased = 0 then low else low + (1 <<< 52)
  let e : Int := (max biased 1 : Nat) - 1075
  let below : Nat := if low = 0 ∧ 1 < biased then 1 else 2
  { value := .binary (4 * m) (e - 2)
    lower := .binary (4 * m - below) (e - 2)
    upper := .binary (4 * m + 2) (e - 2)
    closed := m % 2 = 0 }

/-- Whether a number rounds to the float. -/
def contains (i : Interval) (x : Ratio) : Bool :=
  if i.closed then i.lower.le x && x.le i.upper else i.lower.lt x && x.lt i.upper

end Interval

/-- Which of two equally near candidates is taken. -/
inductive Tie where
  | toEven
  | up
  deriving DecidableEq, Repr

/-- The candidate with digits down to the place of `10 ^ e`, if there is one. -/
def candidate? (tie : Tie) (i : Interval) (e : Int) : Option Nat :=
  let d := i.value.floorScaled (-e)
  match i.contains (.decimal d e), i.contains (.decimal (d + 1) e) with
  | false, false => none
  | true, false => some d
  | false, true => some (d + 1)
  | true, true =>
    let double : Ratio := ⟨2 * i.value.num, i.value.den⟩
    let middle := Ratio.decimal (2 * d + 1) e
    if double.lt middle then some d
    else if middle.lt double then some (d + 1)
    else
      match tie with
      | .up => some (d + 1)
      | .toEven => some (if d % 2 = 0 then d else d + 1)

/-- The digits without zeros at the end, and the number of zeros taken away. -/
def trimZeros (ds : List Nat) : List Nat × Nat :=
  let zeros := (ds.reverse.takeWhile (· == 0)).length
  (ds.take (ds.length - zeros), zeros)

/-- The digits of the shortest form of a positive float, and the exponent of the first digit. -/
def shortest (tie : Tie) (bits : Nat) : List Nat × Int :=
  let i := Interval.ofBits bits
  let lead := i.value.leadExponent
  let attempt (n : Nat) : Option (Nat × Int) :=
    let e := lead - n
    (candidate? tie i e).map (·, e)
  match (List.range 17).findSome? attempt with
  | some (d, e) =>
    let ds := digits d
    ((trimZeros ds).1, e + (ds.length : Int) - 1)
  | none => ([0], 0)

/-- How a float is written down. -/
structure Layout where
  tie : Tie
  /-- The exponents of the first digit with which a number is written without exponent. -/
  positional : Int → Bool
  /-- Whether a whole number keeps a zero after a point. -/
  keepsPoint : Bool
  /-- Whether a positive exponent has a sign. -/
  signsExponent : Bool
  /-- What is written for infinity, if it can be written. -/
  infinity : String
  /-- What is written in place of a number for not-a-number. -/
  notNumber : String
  /-- Whether negative infinity keeps its sign. -/
  signsInfinity : Bool

namespace Layout

def digitText (ds : List Nat) : String := String.ofList (ds.map fun d => Char.ofNat (48 + d))

/-- Digits with a point, the first digit being worth `10 ^ lead`. -/
def placed (l : Layout) (ds : List Nat) (lead : Int) : String :=
  if lead < 0 then "0." ++ digitText (List.replicate ((-lead).toNat - 1) 0 ++ ds)
  else
    let whole := lead.toNat + 1
    if ds.length ≤ whole then
      digitText (ds ++ List.replicate (whole - ds.length) 0) ++ (if l.keepsPoint then ".0" else "")
    else digitText (ds.take whole) ++ "." ++ digitText (ds.drop whole)

/-- Digits with a point after the first one, and an exponent. -/
def scientific (l : Layout) (ds : List Nat) (lead : Int) : String :=
  let sign := if lead < 0 then "-" else if l.signsExponent then "+" else ""
  digitText (ds.take 1) ++ (if ds.length ≤ 1 then "" else "." ++ digitText (ds.drop 1)) ++
    "e" ++ sign ++ digitText (digits lead.natAbs)

def write (l : Layout) (f : Float) : String :=
  let bits := f.toBits.toNat
  let sign := if 1 <<< 63 ≤ bits then "-" else ""
  let bits := bits % (1 <<< 63)
  if 0x7FF0000000000000 < bits then l.notNumber
  else if bits = 0x7FF0000000000000 then (if l.signsInfinity then sign else "") ++ l.infinity
  else if bits = 0 then sign ++ l.placed [0] 0
  else
    let (ds, lead) := shortest l.tie bits
    sign ++ (if l.positional lead then l.placed ds lead else l.scientific ds lead)

/-- Never an exponent, and no point in a whole number. -/
def plain : Layout where
  tie := .up
  positional _ := true
  keepsPoint := false
  signsExponent := false
  infinity := "inf"
  notNumber := "NaN"
  signsInfinity := true

/-- Always a point or an exponent; no exponent from `0.00001` up to below `10 ^ 16`. What is no
number is written as an absent value. -/
def json : Layout where
  tie := .toEven
  positional e := decide (-5 ≤ e ∧ e ≤ 15)
  keepsPoint := true
  signsExponent := true
  infinity := "null"
  notNumber := "null"
  signsInfinity := false

end Layout

end Cutover.Decimal
