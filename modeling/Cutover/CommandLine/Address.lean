/-!
# Socket addresses

The written form of a host and the number behind it: `127.0.0.1:80`, `[::1]:80`, `[fe80::1%2]:80`. A
`Part` takes its share off the front of some characters and gives what follows.
-/

namespace Cutover.CommandLine.Address

/-- Takes a part of an address off the front. -/
abbrev Part := List Char → Option (List Char)

def char (c : Char) : Part
  | [] => none
  | d :: rest => if c = d then some rest else none

/-- The value of a digit in a base up to sixteen. -/
def digit? (base : Nat) (c : Char) : Option Nat :=
  let value :=
    if c.isDigit then c.toNat - 48
    else if 'a' ≤ c ∧ c ≤ 'f' then c.toNat - 87
    else if 'A' ≤ c ∧ c ≤ 'F' then c.toNat - 55
    else 16
  if value < base then some value else none

/-- A number below a bound. A first zero stands alone if `plain` is set, and there may be a limit on
the number of digits. -/
def number (base bound : Nat) (maxDigits : Option Nat) (plain : Bool) : Part := fun cs =>
  let digits := cs.takeWhile fun c => (digit? base c).isSome
  let value := digits.foldl (fun n c => n * base + (digit? base c).getD 0) 0
  if digits.isEmpty || maxDigits.any (· < digits.length) || bound ≤ value then none
  else if plain && digits.head? == some '0' && 1 < digits.length then none
  else some (cs.drop digits.length)

/-- Four numbers with points between them. -/
def v4 : Part := fun cs => do
  let byte := number 10 256 (some 3) true
  let cs ← byte cs
  let cs ← char '.' cs >>= byte
  let cs ← char '.' cs >>= byte
  char '.' cs >>= byte

/-- Up to `room` groups of hexadecimal digits with colons between them, the last two perhaps as four
numbers: how many there are, whether the last two are, and what follows. `first` tells that no colon
is due. -/
def groups : Nat → Bool → List Char → Nat × Bool × List Char
  | 0, _, cs => (0, false, cs)
  | room + 1, first, cs =>
    let separated (part : Part) : Option (List Char) :=
      if first then part cs else char ':' cs >>= part
    match if 0 < room then separated v4 else none with
    | some rest => (2, true, rest)
    | none =>
      match separated (number 16 0x10000 (some 4) false) with
      | none => (0, false, cs)
      | some rest =>
        let (n, tail, rest) := groups room false rest
        (n + 1, tail, rest)

/-- Eight groups, a run of which may be left out between two colons. -/
def v6 : Part := fun cs =>
  let (n, tail, rest) := groups 8 true cs
  if n = 8 then some rest
  else if tail then none
  else do
    let rest ← char ':' rest >>= char ':'
    pure (groups (7 - n) true rest).2.2

/-- The number behind a host. -/
def endNumber : Part := fun cs => char ':' cs >>= number 10 0x10000 none false

/-- The number of a network, behind a percent sign. -/
def scope : Part := fun cs =>
  if cs.head? = some '%' then number 10 UInt32.size none false cs.tail else some cs

/-- Whether a text is a host and a number behind it. -/
def isValid (s : String) : Bool :=
  let cs := s.toList
  (v4 cs >>= endNumber) == some [] ||
    (char '[' cs >>= v6 >>= scope >>= char ']' >>= endNumber) == some []

example : isValid "[1:2:3:4:5:6:7.8.9.10%3]:0" = true := by decide
example : isValid "127.0.0.01:80" = false := by decide
example : isValid "[1:2:3:4:5:6:7:8::]:80" = false := by decide

end Cutover.CommandLine.Address
