/-!
# Media types

The type of a request body, as in `application/problem+json; charset=utf-8`: a kind and a subtype of
token characters, and parameters, whose form is checked and whose values are not kept. The suffix of
a subtype stands behind its last plus sign, if that is not its first character. Main definition:
`MediaType.isJson`, with the types that it accepts as examples.
-/

namespace Cutover

/-- The type of a request body, in lower case. -/
structure MediaType where
  kind : List Char
  subtype : List Char
  suffix : Option (List Char) := none
  deriving DecidableEq, Repr

namespace MediaType

/-- The characters of tokens that are neither letters nor digits. -/
def tokenMarks : List Char := "!#$%&'*+-.^_`|~".toList

def isTokenChar (c : Char) : Bool := c.isAlphanum || tokenMarks.contains c

def isQuotedChar (c : Char) : Bool := 32 ≤ c.toNat && c.toNat < 127

/-- The characters after a quoted value and the blanks behind it, if it is closed. The first
character of the value may be anything, so that a value is never empty. -/
def afterQuoted : List Char → Option (List Char)
  | [] => none
  | c :: rest =>
    if isQuotedChar c then
      match rest.dropWhile fun c => c != '"' && isQuotedChar c with
      | '"' :: rest => some (rest.dropWhile (· == ' '))
      | _ => none
    else none

/-- Whether characters are the written form of parameters. Each may follow blanks and has a name and
a value; a value without quotes is empty only at the end. -/
def areParameters : Nat → List Char → Bool
  | 0, _ => false
  | fuel + 1, cs =>
    let cs := cs.dropWhile (· == ' ')
    if cs.isEmpty then true
    else
      let name := cs.takeWhile isTokenChar
      if name.isEmpty then false
      else
        match cs.dropWhile isTokenChar with
        | '=' :: '"' :: rest =>
          match afterQuoted rest with
          | some [] => true
          | some (';' :: rest) => areParameters fuel rest
          | _ => false
        | '=' :: rest =>
          match rest.dropWhile isTokenChar with
          | [] => true
          | ';' :: more => !(rest.takeWhile isTokenChar).isEmpty && areParameters fuel more
          | _ => false
        | _ => false

/-- The parts of a subtype before and behind its last plus sign, if that is not its first
character. -/
def splitSuffix (cs : List Char) : List Char × Option (List Char) :=
  let suffix := (cs.reverse.takeWhile (· != '+')).reverse
  let before := cs.take (cs.length - suffix.length - 1)
  if before.isEmpty || suffix.length = cs.length then (cs, none) else (before, some suffix)

def parse? (s : String) : Option MediaType :=
  let cs := s.toList
  let kind := cs.takeWhile isTokenChar
  match cs.dropWhile isTokenChar with
  | '/' :: rest =>
    let (subtype, suffix) := splitSuffix ((rest.takeWhile isTokenChar).map Char.toLower)
    let type : MediaType := ⟨kind.map Char.toLower, subtype, suffix⟩
    if kind.isEmpty then none
    else
      match rest.dropWhile isTokenChar with
      | [] => some type
      | ';' :: parameters =>
        if !(rest.takeWhile isTokenChar).isEmpty && areParameters (parameters.length + 1) parameters
        then some type
        else none
      | _ => none
  | _ => none

def isJson (t : MediaType) : Bool :=
  t.kind == "application".toList &&
    (t.subtype == "json".toList || t.suffix == some "json".toList)

/-- Whether a text names a type of JSON texts. -/
def namesJson (s : String) : Bool := (parse? s).any isJson

example : namesJson "APPLICATION/Problem+JSON; charset=\"utf-8\" ; q=1" = true := by decide
example : namesJson "application/+json" = false := by decide
example : namesJson "application/json; q" = false := by decide

end MediaType

end Cutover
