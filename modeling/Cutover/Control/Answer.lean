import Cutover.Error
import Cutover.Control.Uuid
import Cutover.Json.Record
import Cutover.Json.Printer

/-!
# Answers of the control surface

An answer has a status code, a text, and perhaps the id of a job. A request that is refused is
answered with the reason. Main definitions: `Answer.encode`, `Refusal.answer`.
-/

namespace Cutover.Control

/-- An answer, with job ids of type `ι`. -/
structure Answer (ι : Type) where
  code : Nat
  text : String
  job : Option ι := none
  deriving DecidableEq, Repr

namespace Answer

variable {ι : Type}

def okCode : Nat := 200

def ok (text : String) (job : Option ι) : Answer ι := ⟨okCode, text, job⟩

def encode (writeId : ι → Bytes) (a : Answer ι) : Bytes :=
  Json.Printer.object <|
    [("code", Json.Printer.nat a.code), ("msg", Json.Printer.text a.text)] ++
      (a.job.map fun id => ("job_id", writeId id)).toList

/-- How an answer is read. Codes have 16 bits. -/
def record : Json.Record (Answer Uuid) where
  fields :=
    [.of "code" true (.natBelow UInt16.size) fun code a => { a with code },
      .of "msg" true .text fun text a => { a with text },
      .of "job_id" false (.optional (.refine .text Uuid.parse?)) fun job a => { a with job }]
  blank := ⟨0, "", none⟩

def decode? (bs : Bytes) : Option (Answer Uuid) := (Json.Reader.decode record.read bs).toOption

end Answer

/-- Why a request is refused. -/
inductive Refusal where
  | failed (e : Error)
  /-- It makes no sense. -/
  | input (text : String)
  deriving DecidableEq, Repr

namespace Refusal

/-- The status code of a refusal: whether the request was at fault. -/
def code : Refusal → Nat
  | input _ | failed (.unknownPolicy _) | failed (.config _) => 400
  | failed _ => 500

def text : Refusal → String
  | failed e => e.message
  | input text => text

def answer {ι : Type} (r : Refusal) : Answer ι := ⟨r.code, r.text, none⟩

/-- The body is not said to be JSON. -/
def wrongType : Refusal := input "Expected request with `Content-Type: application/json`"

/-- The body is longer than bodies may be. -/
def tooLong : Refusal := input "Failed to buffer the request body"

/-- The body is not what the request needs. -/
def wrongBody : Json.Problem → Refusal
  | .malformed => input "Failed to parse the request body as JSON"
  | .mismatched => input "Failed to deserialize the JSON body into the target type"

/-- A pause has a negative length. -/
def negativePause : Refusal := input "interval_ms must not be negative"

theorem code_ne_okCode (r : Refusal) : r.code ≠ Answer.okCode := by
  unfold code Answer.okCode
  split <;> decide

end Refusal

end Cutover.Control
