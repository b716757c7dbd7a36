import Cutover.Json.Text

/-!
# Identifiers of 128 bits

An identifier is 32 hexadecimal digits, and is shown in groups of 8, 4, 4, 4 and 12 with hyphens
between them. It is read in that form, also in braces or as a URN, and without hyphens.
-/

namespace Cutover

/-- An identifier, as the values of its hexadecimal digits. -/
structure Uuid where
  digits : List (Fin 16)
  length_digits : digits.length = 32
  deriving DecidableEq, Repr

namespace Uuid

def digitChar (d : Fin 16) : Char := Char.ofNat (if d < 10 then 48 + d else 87 + d)

/-- The hexadecimal digit that a character shows, in either case. -/
def digit? (c : Char) : Option (Fin 16) :=
  (List.finRange 16).find? fun d => digitChar d == c.toLower

def ofDigits? (cs : List Char) : Option Uuid :=
  match cs.mapM digit? with
  | none => none
  | some digits => if h : digits.length = 32 then some ⟨digits, h⟩ else none

def hyphenPlaces : List Nat := [8, 13, 18, 23]

def grouped? (cs : List Char) : Option Uuid :=
  if cs.length = 36 ∧ hyphenPlaces.all fun i => cs[i]? == some '-' then
    ofDigits?
      (cs.take 8 ++ (cs.drop 9).take 4 ++ (cs.drop 14).take 4 ++ (cs.drop 19).take 4 ++ cs.drop 24)
  else none

def parse? (s : String) : Option Uuid :=
  let cs := s.toList
  if cs.length = 32 then ofDigits? cs
  else if cs.length = 38 then
    if cs.head? = some '{' ∧ cs.getLast? = some '}' then grouped? (cs.drop 1).dropLast else none
  else if cs.length = 45 then
    if cs.take 9 = "urn:uuid:".toList then grouped? (cs.drop 9) else none
  else grouped? cs

def toText (u : Uuid) : String :=
  let cs := u.digits.map digitChar
  String.ofList
    (cs.take 8 ++ '-' :: (cs.drop 8).take 4 ++ '-' :: (cs.drop 12).take 4 ++ '-' ::
      (cs.drop 16).take 4 ++ '-' :: cs.drop 20)

example :
    (parse? "urn:uuid:6BA7B810-9DAD-11D1-80B4-00C04FD430C8").map toText =
      some "6ba7b810-9dad-11d1-80b4-00c04fd430c8" := by decide

end Uuid

end Cutover
