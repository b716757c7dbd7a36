/-!
# Decimal numbers as floats

How many leading digits of a decimal number count, and the float that they and a power of ten give.
Digits count as long as they fit in 64 bits; the rest only moves the point. The product or quotient
with the power of ten is rounded once per step, so a number with many digits need not be the nearest
float, and a number beyond the largest float has none.
-/

namespace Cutover.Decimal

/-- The number made of the leading digits that fit in 64 bits after `n`, and how many digits are
left out after them. -/
def leading : Nat → List Nat → Nat × Nat
  | n, [] => (n, 0)
  | n, d :: ds => if 10 * n + d < UInt64.size then leading (10 * n + d) ds else (n, ds.length + 1)

/-- As `leading`, with the number of digits that were taken. -/
def following : Nat → List Nat → Nat × Nat
  | n, [] => (n, 0)
  | n, d :: ds =>
    if 10 * n + d < UInt64.size then
      let (m, taken) := following (10 * n + d) ds
      (m, taken + 1)
    else (n, 0)

def powTen (k : Nat) : Float := Float.ofScientific 1 false k

/-- `f` times `10 ^ e`, if that is no infinity. The largest power of ten in one step is `10 ^ 308`;
a positive exponent beyond it is too large for any `f` but zero. -/
def scaleFloat (f : Float) (e : Int) : Option Float :=
  if e.natAbs ≤ 308 then
    if 0 ≤ e then
      let r := f * powTen e.toNat
      if r.isInf then none else some r
    else some (f / powTen e.natAbs)
  else if f == 0 then some f
  else if h : 0 ≤ e then none
  else scaleFloat (f / powTen 308) (e + 308)
  termination_by e.natAbs
  decreasing_by omega

/-- The float of a number below `2 ^ 64` times a power of ten. -/
def scale (n : Nat) (e : Int) : Option Float := scaleFloat (UInt64.ofNat n).toFloat e

end Cutover.Decimal
