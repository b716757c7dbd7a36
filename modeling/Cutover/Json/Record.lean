import Cutover.Json.Reader

/-!
# Records

A record is written as an object, with its fields in any order and with members of other names, or
as an array of its fields in order. A field may not come twice. A field that is not required keeps
its default when it is absent.
-/

namespace Cutover.Json

/-- A field of a record of type `α`. -/
structure Field (α : Type) where
  /-- The names under which the field may come. -/
  names : List String
  /-- Whether the field has to be there. -/
  required : Bool
  /-- Takes the value of the field off the front and gives what it does to a record. -/
  read : Reader (α → α)

namespace Field

/-- A field with one name, from a reader of its value and a way to set it. -/
def of {α β : Type} (name : String) (required : Bool) (r : Reader β) (set : β → α → α) : Field α :=
  ⟨[name], required, fun bs => (r bs).map fun (b, rest) => (set b, rest)⟩

/-- The field, also under a second name. -/
def orNamed {α : Type} (f : Field α) (name : String) : Field α :=
  { f with names := f.names ++ [name] }

end Field

/-- How a record is read: its fields in order, and the record before any of them is set. -/
structure Record (α : Type) where
  fields : List (Field α)
  blank : α

namespace Record

variable {α : Type}

/-- The field with a given name, and its place. -/
def named? (fields : List (Field α)) (name : String) : Option (Field α × Nat) :=
  fields.zipIdx.find? (·.1.names.contains name)

/-- Whether the required fields are all among the places seen. -/
def complete (fields : List (Field α)) (seen : List Nat) : Bool :=
  (fields.zipIdx).all fun (f, i) => !f.required || seen.contains i

/-- The members of an object, from the name of the next member on. -/
def membersGo (fields : List (Field α)) : Nat → List Nat → α → Bytes → Except Problem (α × Bytes)
  | 0, _, _, _ => throw .malformed
  | fuel + 1, seen, a, bs => do
    let rest ← require (word [34] (skipBlank bs))
    let (name, rest) ← require (Text.read rest)
    let (seen, a, rest) ←
      match named? fields name with
      | none => do
        let rest ← require (word [58] (skipBlank rest))
        let rest ← require (skip rest)
        pure (seen, a, rest)
      | some (f, i) =>
        if seen.contains i then throw .mismatched
        else do
          let rest ← require (word [58] (skipBlank rest))
          let (set, rest) ← f.read rest
          pure (i :: seen, set a, rest)
    match skipBlank rest with
    | [] => throw .malformed
    | b :: rest =>
      if b = 44 then membersGo fields fuel seen a rest
      else if b = 125 then if complete fields seen then pure (a, rest) else throw .mismatched
      else throw .malformed

/-- The fields of an array, with `first` telling that no comma is due. -/
def elementsGo : List (Field α) → Bool → α → Bytes → Except Problem (α × Bytes)
  | [], _, a, bs => do
    let rest ← require (word [93] (skipBlank bs))
    pure (a, rest)
  | f :: fs, first, a, bs =>
    match skipBlank bs with
    | [] => throw .malformed
    | b :: rest =>
      if b = 93 then
        if (f :: fs).all (!·.required) then pure (a, rest) else throw .mismatched
      else if first then do
        let (set, rest) ← f.read (b :: rest)
        elementsGo fs false (set a) rest
      else if b = 44 then do
        let (set, rest) ← f.read rest
        elementsGo fs false (set a) rest
      else throw .malformed

def read (r : Record α) : Reader α := fun bs =>
  match skipBlank bs with
  | [] => throw .malformed
  | b :: rest =>
    if b = 123 then
      match skipBlank rest with
      | [] => throw .malformed
      | c :: tail =>
        if c = 125 then if complete r.fields [] then pure (r.blank, tail) else throw .mismatched
        else membersGo r.fields (rest.length + 1) [] r.blank (c :: tail)
    else if b = 91 then elementsGo r.fields true r.blank rest
    else throw (unwanted (b :: rest))

end Record

end Cutover.Json
