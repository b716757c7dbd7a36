import Cutover.Json.Numeral

/-!
# Values that are passed over

A value nobody asked for is only checked against the grammar. Texts in it may hold anything that
scans, numbers may be of any size, and nesting may be of any depth: the open brackets are kept in a
list, innermost first.
-/

namespace Cutover.Json

/-- An open bracket. -/
inductive Frame where
  | array
  | object
  deriving DecidableEq, Repr

/-- What may come next while a value is passed over. -/
inductive Awaiting where
  | value
  /-- A value or the end of the array that was just opened. -/
  | firstItem
  | name
  /-- A member name or the end of the object that was just opened. -/
  | firstName
  /-- A comma or the end of the innermost bracket. -/
  | next
  deriving DecidableEq, Repr

namespace Frame

def close : Frame → UInt8
  | array => 93
  | object => 125

/-- What follows a comma. -/
def afterComma : Frame → Awaiting
  | array => .value
  | object => .name

end Frame

/-- The bytes after the rest of a value, with `open_` the brackets still open. -/
def skipGo : Nat → Awaiting → List Frame → Bytes → Option Bytes
  | 0, _, _, _ => none
  | _ + 1, .next, [], bs => some bs
  | fuel + 1, .next, f :: outer, bs =>
    match skipBlank bs with
    | [] => none
    | b :: rest =>
      if b = 44 then skipGo fuel f.afterComma (f :: outer) rest
      else if b = f.close then skipGo fuel .next outer rest
      else none
  | fuel + 1, .firstItem, outer, bs =>
    match skipBlank bs with
    | [] => none
    | b :: rest =>
      if b = 93 then skipGo fuel .next outer.tail rest else skipGo fuel .value outer (b :: rest)
  | fuel + 1, .firstName, outer, bs =>
    match skipBlank bs with
    | [] => none
    | b :: rest =>
      if b = 125 then skipGo fuel .next outer.tail rest else skipGo fuel .name outer (b :: rest)
  | fuel + 1, .name, outer, bs =>
    match skipBlank bs with
    | [] => none
    | b :: rest =>
      if b = 34 then do
        let (_, rest) ← Text.scan rest
        let rest ← word [58] (skipBlank rest)
        skipGo fuel .value outer rest
      else none
  | fuel + 1, .value, outer, bs =>
    match skipBlank bs with
    | [] => none
    | b :: rest =>
      if b = 34 then do
        let (_, rest) ← Text.scan rest
        skipGo fuel .next outer rest
      else if b = 91 then skipGo fuel .firstItem (.array :: outer) rest
      else if b = 123 then skipGo fuel .firstName (.object :: outer) rest
      else if b = 110 then (word [117, 108, 108] rest).bind (skipGo fuel .next outer)
      else if b = 116 then (word [114, 117, 101] rest).bind (skipGo fuel .next outer)
      else if b = 102 then (word [97, 108, 115, 101] rest).bind (skipGo fuel .next outer)
      else do
        let (_, rest) ← Numeral.read (b :: rest)
        skipGo fuel .next outer rest

/-- The bytes after the value at the front. No more than two turns are taken per byte. -/
def skip (bs : Bytes) : Option Bytes := skipGo (2 * bs.length + 2) .value [] bs

end Cutover.Json
