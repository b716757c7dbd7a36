import Cutover.Json.Skip

/-!
# Readers

A reader takes the written form of a value off the front of some bytes. It stops at the first byte
that cannot be right, so of two problems the one further left is reported, and bytes after the value
are not looked at. `Reader.decode` asks for a whole text.
-/

namespace Cutover.Json

/-- Takes the written form of an `α` off the front, with the blanks before it. -/
abbrev Reader (α : Type) := Bytes → Except Problem (α × Bytes)

/-- A part of the grammar that has to be there. -/
def require {α : Type} : Option α → Except Problem α
  | some a => .ok a
  | none => .error .malformed

/-- The problem with a value of an unwanted type. A scalar is read to its end first, an array or an
object is not looked into. -/
def unwanted (bs : Bytes) : Problem :=
  match bs with
  | [] => .malformed
  | b :: rest =>
    let found (seen : Bool) : Problem := if seen then .mismatched else .malformed
    if b = 34 then found (Text.read rest).isSome
    else if b = 91 || b = 123 then .mismatched
    else if b = 110 then found (word [117, 108, 108] rest).isSome
    else if b = 116 then found (word [114, 117, 101] rest).isSome
    else if b = 102 then found (word [97, 108, 115, 101] rest).isSome
    else found (Number.read bs).isSome

/-- Whether a numeral starts here. -/
def startsNumeral : Bytes → Bool
  | [] => false
  | b :: _ => b == 45 || Numeral.isDigit b

namespace Reader

/-- The value of a whole text, with blanks before and after it. -/
def decode {α : Type} (r : Reader α) (bs : Bytes) : Except Problem α := do
  let (a, rest) ← r bs
  if (skipBlank rest).isEmpty then pure a else throw .malformed

/-- An integer between two bounds. -/
def int (lo hi : Int) : Reader Int := fun bs => do
  let bs := skipBlank bs
  if startsNumeral bs then
    let (n, rest) ← require (Number.read bs)
    match n with
    | .int n => if lo ≤ n ∧ n ≤ hi then pure (n, rest) else throw .mismatched
    | .float _ => throw .mismatched
  else throw (unwanted bs)

def int64 : Reader Int := int Int64.minValue.toInt Int64.maxValue.toInt

/-- An unsigned integer below a bound. -/
def natBelow (bound : Nat) : Reader Nat := fun bs =>
  (int 0 (bound - 1) bs).map fun (n, rest) => (n.toNat, rest)

def nat64 : Reader Nat := natBelow UInt64.size

def text : Reader String := fun bs =>
  match skipBlank bs with
  | [] => throw .malformed
  | b :: rest => if b = 34 then require (Text.read rest) else throw (unwanted (b :: rest))

def bool : Reader Bool := fun bs =>
  match skipBlank bs with
  | [] => throw .malformed
  | b :: rest =>
    if b = 116 then (require (word [114, 117, 101] rest)).map (true, ·)
    else if b = 102 then (require (word [97, 108, 115, 101] rest)).map (false, ·)
    else throw (unwanted (b :: rest))

def null : Reader Unit := fun bs =>
  match skipBlank bs with
  | [] => throw .malformed
  | b :: rest =>
    if b = 110 then (require (word [117, 108, 108] rest)).map ((), ·)
    else throw (unwanted (b :: rest))

def optional {α : Type} (r : Reader α) : Reader (Option α) := fun bs =>
  match skipBlank bs with
  | [] => throw .malformed
  | b :: rest =>
    if b = 110 then (require (word [117, 108, 108] rest)).map (none, ·)
    else (r (b :: rest)).map fun (a, rest) => (some a, rest)

/-- A value that a reader gives, if it passes a check. -/
def refine {α β : Type} (r : Reader α) (check : α → Option β) : Reader β := fun bs => do
  let (a, rest) ← r bs
  match check a with
  | some b => pure (b, rest)
  | none => throw .mismatched

/-- One of several names: the name as a text, or an object whose only member has that name and is
absent. -/
def choice {α : Type} (ofName? : String → Option α) : Reader α := fun bs =>
  match skipBlank bs with
  | [] => throw .malformed
  | b :: rest =>
    if b = 34 then refine text ofName? (b :: rest)
    else if b = 123 then do
      let (a, rest) ← refine text ofName? rest
      let rest ← require (word [58] (skipBlank rest))
      let (_, rest) ← null rest
      let rest ← require (word [125] (skipBlank rest))
      pure (a, rest)
    else throw .malformed

/-- The items of an array after its first bracket or a comma. -/
def itemsGo {α : Type} (r : Reader α) : Nat → Bytes → Except Problem (List α × Bytes)
  | 0, _ => throw .malformed
  | fuel + 1, bs => do
    let (a, rest) ← r bs
    match skipBlank rest with
    | [] => throw .malformed
    | b :: rest =>
      if b = 44 then do
        let (as, rest) ← itemsGo r fuel rest
        pure (a :: as, rest)
      else if b = 93 then pure ([a], rest)
      else throw .malformed

def array {α : Type} (r : Reader α) : Reader (List α) := fun bs =>
  match skipBlank bs with
  | [] => throw .malformed
  | b :: rest =>
    if b = 91 then
      match skipBlank rest with
      | [] => throw .malformed
      | c :: rest => if c = 93 then pure ([], rest) else itemsGo r (rest.length + 1) (c :: rest)
    else throw (unwanted (b :: rest))

end Reader

end Cutover.Json
